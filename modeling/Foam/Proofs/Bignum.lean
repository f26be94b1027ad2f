import Foam.Proofs.Text.Numeral
import Mathlib.Algebra.BigOperators.Fin

/-!
# Bignum literals

The value of a literal is the signed sum of its places, each times the power of 65536 at its
position. Literals are canonical, so that the value determines the literal.

Numbers are taken apart into places and put together from them, and hexadecimal digits are written
and read four to a place. What comes of it depends on the value alone: the digits are those of the
magnitude (`hex_eq`), and a numeral is read as the literal of its value (`ofHex?_eq`).
-/

namespace Foam

namespace Bignum

/-! ## Places -/

/-- The number whose base 65536 places, least first, are `ps`. -/
def valueOf : List UInt16 → Nat
  | [] => 0
  | p :: ps => p.toNat + 65536 * valueOf ps

theorem valueOf_eq_sum (ps : List UInt16) :
    valueOf ps = ∑ i : Fin ps.length, ps[i].toNat * 65536 ^ i.val := by
  induction ps with
  | nil => rfl
  | cons p ps ih =>
      show _ = ∑ i : Fin (ps.length + 1), (p :: ps)[i].toNat * 65536 ^ i.val
      rw [valueOf, ih, Fin.sum_univ_succ, Finset.mul_sum]
      refine congrArg₂ (· + ·) (by simp) (Finset.sum_congr rfl fun i _ => ?_)
      show 65536 * (ps[i].toNat * 65536 ^ i.val) = ps[i].toNat * 65536 ^ (i.val + 1)
      rw [pow_succ, Nat.mul_comm, Nat.mul_assoc]

/-- The top place comes first when the places are added up from the top. -/
theorem valueOf_eq_foldl (ps : List UInt16) :
    valueOf ps = ps.reverse.foldl (fun n p => 65536 * n + p.toNat) 0 := by
  rw [List.foldl_reverse]
  induction ps with
  | nil => rfl
  | cons p ps ih => rw [valueOf, List.foldr_cons, ih, Nat.add_comm]

theorem valueOf_dropHigh (ps : List UInt16) : valueOf (dropHigh ps) = valueOf ps := by
  induction ps with
  | nil => rfl
  | cons p ps ih =>
      rw [dropHigh, valueOf, ← ih]
      split
      · next h =>
          rw [h]
          split
          · next hp => rw [hp]; rfl
          · rfl
      · next q qs h => rw [h, valueOf]

theorem getLast?_tail {p : UInt16} {ps : List UInt16} (h : (p :: ps).getLast? ≠ some 0) :
    ps.getLast? ≠ some 0 := by
  cases ps with
  | nil => exact nofun
  | cons q qs => rwa [List.getLast?_cons_cons] at h

/-- Places without a zero at the top have at least the weight of the top place. -/
theorem le_valueOf {p : UInt16} {ps : List UInt16} (h : (p :: ps).getLast? ≠ some 0) :
    65536 ^ ps.length ≤ valueOf (p :: ps) := by
  induction ps generalizing p with
  | nil =>
      have hp : p.toNat ≠ 0 := fun hp => h (congrArg some (UInt16.toNat_inj.mp hp))
      rw [valueOf, List.length_nil, pow_zero]
      omega
  | cons q qs ih =>
      have hle := ih (getLast?_tail h)
      rw [valueOf, List.length_cons, pow_succ]
      omega

theorem valueOf_ne_zero {ps : List UInt16} (h : ps.getLast? ≠ some 0) (hne : ps ≠ []) :
    valueOf ps ≠ 0 := by
  obtain ⟨p, qs, rfl⟩ := List.exists_cons_of_ne_nil hne
  exact Nat.ne_of_gt (Nat.lt_of_lt_of_le (Nat.pow_pos (by decide)) (le_valueOf h))

/-- Places without a zero at the top are those of their value. -/
theorem placesOf_valueOf {ps : List UInt16} (h : ps.getLast? ≠ some 0) :
    placesOf (valueOf ps) = ps := by
  induction ps with
  | nil => rw [valueOf, placesOf, if_pos rfl]
  | cons p ps ih =>
      have hlt : p.toNat < 65536 := p.toNat_lt
      have hmod : (p.toNat + 65536 * valueOf ps) % 65536 = p.toNat := by omega
      have hdiv : (p.toNat + 65536 * valueOf ps) / 65536 = valueOf ps := by omega
      rw [placesOf, if_neg (valueOf_ne_zero h (List.cons_ne_nil _ _)), valueOf, hmod, hdiv,
        ih (getLast?_tail h), UInt16.ofNat_toNat]

theorem valueOf_placesOf (n : Nat) : valueOf (placesOf n) = n := by
  induction n using Nat.strongRecOn with
  | _ n ih =>
      rw [placesOf]
      split
      · next hn => rw [hn, valueOf]
      · next hn =>
          rw [valueOf, ih _ (Nat.div_lt_self (by omega) (by decide)),
            UInt16.toNat_ofNat_of_lt' (Nat.mod_lt _ (by decide))]
          exact Nat.mod_add_div n 65536

/-! ## Values -/

def sign (negative : Bool) : Int := if negative then -1 else 1

/-- The signed sum of the places, each times the power of the base at its position. -/
def value (b : Bignum) : Int :=
  sign b.negative * ∑ i : Fin b.places.length, b.places[i].toNat * 65536 ^ i.val

theorem value_eq (b : Bignum) : b.value = sign b.negative * valueOf b.places := by
  rw [value, valueOf_eq_sum]

theorem value_ofPlaces (negative : Bool) (ps : List UInt16) :
    (ofPlaces negative ps).value = sign negative * valueOf ps := by
  rw [value_eq]
  show sign (negative && !(dropHigh ps).isEmpty) * valueOf (dropHigh ps) = _
  rw [valueOf_dropHigh]
  cases h : dropHigh ps with
  | nil =>
      have hzero : valueOf ps = 0 := by rw [← valueOf_dropHigh, h, valueOf]
      rw [hzero]
      simp
  | cons p qs => simp

theorem value_ofInt (v : Int) : (ofInt v).value = v := by
  rw [ofInt, value_ofPlaces, valueOf_placesOf, sign]
  split
  · next h =>
      have hv : v < 0 := of_decide_eq_true h
      omega
  · next h =>
      have hv : ¬v < 0 := fun hv => h (decide_eq_true hv)
      omega

/-- The literal of a value is determined by it. -/
theorem ofInt_value (b : Bignum) : ofInt b.value = b := by
  have hpos : b.negative = true → 0 < valueOf b.places := fun h =>
    Nat.pos_of_ne_zero (valueOf_ne_zero b.places_getLast (b.negative_ne_zero h))
  have habs : b.value.natAbs = valueOf b.places := by
    rw [value_eq, sign]
    split <;> simp
  have hneg : decide (b.value < 0) = b.negative := by
    rw [value_eq, sign]
    cases h : b.negative with
    | false => simp
    | true => simpa using hpos h
  rw [ofInt, habs, hneg, placesOf_valueOf b.places_getLast, ofPlaces_places]

theorem value_injective : Function.Injective value :=
  Function.LeftInverse.injective ofInt_value

/-! ## Machine integers -/

/-- Shifting a place in below is adding it. -/
theorem assemble_eq (ps : List UInt16) : assemble ps = valueOf ps := by
  induction ps with
  | nil => rfl
  | cons p ps ih =>
      show assemble ps <<< 16 ||| p.toNat = _
      rw [← Nat.shiftLeft_add_eq_or_of_lt p.toNat_lt, Nat.shiftLeft_eq, ih, valueOf, Nat.add_comm,
        Nat.mul_comm]

/-- A literal with more places than there are in the bits is out of their range. -/
theorem le_valueOf_of_bits {bits : Nat} {ps : List UInt16} (h : ps.getLast? ≠ some 0)
    (hdvd : 16 ∣ bits) (hlen : bits < 16 * ps.length) : 2 ^ bits ≤ valueOf ps := by
  obtain ⟨k, rfl⟩ := hdvd
  have hne : ps ≠ [] := by
    rintro rfl
    exact absurd hlen (Nat.not_lt_zero _)
  obtain ⟨p, qs, rfl⟩ := List.exists_cons_of_ne_nil hne
  rw [List.length_cons] at hlen
  calc 2 ^ (16 * k)
    _ = 65536 ^ k := pow_mul 2 16 k
    _ ≤ 65536 ^ qs.length := Nat.pow_le_pow_right (by decide) (by omega)
    _ ≤ valueOf (p :: qs) := le_valueOf h

/-- Whole places make up the bits: the value is given exactly if it is in their range, which has one
number more below zero. -/
theorem toInt?_eq {bits : Nat} (hbits : 0 < bits) (hdvd : 16 ∣ bits) (b : Bignum) :
    b.toInt? bits =
      if -2 ^ (bits - 1) ≤ b.value ∧ b.value < 2 ^ (bits - 1) then some b.value else none := by
  obtain ⟨half, hhalf⟩ : ∃ half, Nat.pow 2 (bits - 1) = half := ⟨_, rfl⟩
  have hbound : (2 : Int) ^ (bits - 1) = half := by rw [← hhalf]; exact (Nat.cast_pow 2 _).symm
  have hpos : 0 < half := hhalf ▸ Nat.two_pow_pos _
  rw [toInt?, assemble_eq, value_eq, sign, hbound, hhalf]
  by_cases hlen : bits < 16 * b.places.length
  · have hle : 2 * half ≤ valueOf b.places := by
      have hdouble : 2 ^ bits = 2 * half := by
        rw [← hhalf, Nat.mul_comm, ← Nat.sub_add_cancel hbits]
        exact pow_succ 2 (bits - 1)
      exact hdouble ▸ le_valueOf_of_bits b.places_getLast hdvd hlen
    rw [if_pos hlen, if_neg]
    cases b.negative <;> simp <;> omega
  · rw [if_neg hlen]
    cases b.negative with
    | false =>
        simp only [Bool.false_eq_true, if_false, one_mul]
        exact if_congr (by omega) rfl rfl
    | true =>
        simp only [if_true, neg_one_mul]
        exact if_congr (by omega) rfl rfl

/-! ## Written form -/

open Text.Hex

/-- Places written after the digits of a number continue its numeral. -/
theorem significant_foldl {n : Nat} (hn : n ≠ 0) (ps : List UInt16) :
    significant (ps.foldl (fun n p => 65536 * n + p.toNat) n) =
      significant n ++ ps.flatMap fun p => padded 4 p.toNat := by
  induction ps generalizing n with
  | nil => simp
  | cons p ps ih =>
      have hplace : significant (65536 * n + p.toNat) = significant n ++ padded 4 p.toNat :=
        significant_padded (by decide : 0 < 4) hn p.toNat_lt
      rw [List.foldl_cons, ih (by omega), List.flatMap_cons, hplace, List.append_assoc]

/-- The digits that are written place by place are those of the magnitude. -/
theorem hex_eq (b : Bignum) : b.hex = digits (valueOf b.places) := by
  rw [valueOf_eq_foldl, hex]
  have htop := b.places_getLast
  rw [← List.head?_reverse] at htop
  cases h : b.places.reverse with
  | nil => rfl
  | cons p ps =>
      rw [h] at htop
      have hp : p.toNat ≠ 0 := fun hp => htop (congrArg some (UInt16.toNat_inj.mp hp))
      have hne : significant (ps.foldl (fun n p => 65536 * n + p.toNat) p.toNat) ≠ [] := by
        rw [significant_foldl hp]
        exact List.append_ne_nil_of_left_ne_nil (significant_ne_nil hp) _
      have hfold : ps.foldl (fun n p => 65536 * n + p.toNat) p.toNat ≠ 0 := by
        intro hzero
        rw [hzero, significant] at hne
        exact hne rfl
      show digits p.toNat ++ _ = digits (ps.foldl _ (65536 * 0 + p.toNat))
      rw [Nat.mul_zero, Nat.zero_add, digits, if_neg hp, digits, if_neg hfold, significant_foldl hp]

/-- Up to four digits are read as the place of their value. -/
theorem place?_eq {cs : List Char} (hne : cs ≠ []) (hlen : cs.length ≤ 4) (h : AllDigits cs) :
    ∃ p, place? cs = some p ∧ p.toNat = numeral cs := by
  have hlt : numeral cs < 65536 :=
    Nat.lt_of_lt_of_le (numeral_lt fun c hc => digitValue_lt (h c hc))
      (Nat.pow_le_pow_right (by decide) hlen)
  refine ⟨_, ?_, UInt16.toNat_ofNat_of_lt' hlt⟩
  rw [place?, Text.Hex.read?_eq, if_pos ⟨hne, h⟩]
  rfl

/-- The groups of a numeral are read as places of its value. -/
theorem places_of_groups {cs : List Char} (h : AllDigits cs) :
    ∃ ps, (groups cs).mapM place? = some ps ∧ valueOf ps = numeral cs := by
  induction cs using groups.induct with
  | case1 cs hcs =>
      obtain rfl := List.eq_nil_of_length_eq_zero hcs
      exact ⟨[], by rw [groups, if_pos hcs]; rfl, rfl⟩
  | case2 cs hcs start ih =>
      obtain ⟨ps, hps, hvalue⟩ := ih fun c hc => h c (List.mem_of_mem_take hc)
      have hlength : (cs.drop start).length = cs.length - start := List.length_drop
      obtain ⟨p, hp, hplace⟩ := place?_eq (List.length_pos_iff.mp (by omega))
        (by omega : (cs.drop start).length ≤ 4) fun c hc => h c (List.mem_of_mem_drop hc)
      refine ⟨p :: ps, ?_, ?_⟩
      · rw [groups, if_neg hcs]
        show (cs.drop start :: groups (cs.take start)).mapM place? = _
        rw [List.mapM_cons, hp, hps]
        rfl
      · have hsplit := numeral_append (cs.take start) (cs.drop start)
        rw [List.take_append_drop] at hsplit
        rw [valueOf, hplace, hvalue, hsplit, Nat.add_comm]
        -- to the left of fewer than four digits there are none
        by_cases hlen : 4 ≤ cs.length
        · have hfour : (cs.drop start).length = 4 := by rw [List.length_drop]; omega
          rw [hfour]
          rfl
        · have hstart : start = 0 := Nat.sub_eq_zero_of_le (by omega)
          rw [hstart, List.take_zero]
          rfl

/-- A numeral, of any length and case, is read as the literal of its value, and nothing else is
read. -/
theorem ofHex?_eq (negative : Bool) (cs : List Char) : ofHex? negative cs =
    if cs ≠ [] ∧ AllDigits cs then some (ofInt (sign negative * numeral cs)) else none := by
  unfold ofHex?
  by_cases h : cs ≠ [] ∧ AllDigits cs
  · obtain ⟨ps, hps, hvalue⟩ := places_of_groups h.2
    have hread : (cs.isEmpty || !cs.all isDigit) = false := by
      rw [List.isEmpty_eq_false_iff.mpr h.1, all_isDigit_iff.mpr h.2]
      rfl
    rw [hread, if_neg Bool.false_ne_true, if_pos h, hps, Option.map_some]
    refine congrArg some (value_injective ?_)
    rw [value_ofPlaces, value_ofInt, hvalue]
  · have hread : (cs.isEmpty || !cs.all isDigit) = true := by
      rw [← all_isDigit_iff, not_and_or, not_not, Bool.not_eq_true] at h
      rcases h with rfl | h
      · rfl
      · rw [h]
        exact Bool.or_true _
    rw [hread, if_pos rfl, if_neg h]

theorem ofHex?_hex (b : Bignum) : ofHex? b.negative b.hex = some b := by
  have hread := read?_digits (valueOf b.places)
  rw [Text.Hex.read?_eq, ← hex_eq, Option.ite_none_right_eq_some] at hread
  obtain ⟨hdigits, hvalue⟩ := hread
  rw [ofHex?_eq, if_pos hdigits, Option.some.inj hvalue, ← value_eq, ofInt_value]

theorem toList_text (b : Bignum) :
    b.text.toList = (if b.negative then ['-'] else []) ++ '#' :: 'x' :: b.hex :=
  String.toList_ofList

/-- A bignum literal is read back from its text. -/
theorem read?_text (b : Bignum) : read? b.text.toList = some b := by
  have h := ofHex?_hex b
  rw [toList_text]
  cases hn : b.negative with
  | false =>
      rw [hn] at h
      exact h
  | true =>
      rw [hn] at h
      exact h

/-! ## Canonical and exact -/

/-- Literals are canonical: there is no zero place at the top and no negative zero, and equal values
are equal literals. Whatever a literal is made of, places, an integer or a numeral of either case and
any length, it has the value of, and what is no numeral is refused. A literal is an integer of 128
bits exactly if its value is in their range, and is read back from its digits. -/
theorem canonical_exact (b c : Bignum) (negative : Bool) (ps : List UInt16) (v : Int)
    (cs : List Char) :
    b.places.getLast? ≠ some 0 ∧ ¬(b.negative = true ∧ b.value = 0) ∧ (b.value = c.value ↔ b = c) ∧
      (ofPlaces negative ps).value =
        sign negative * ∑ i : Fin ps.length, ps[i].toNat * 65536 ^ i.val ∧
      (ofInt v).value = v ∧
      b.toInt? 128 =
        (if -2 ^ 127 ≤ b.value ∧ b.value ≤ 2 ^ 127 - 1 then some b.value else none) ∧
      (ofHex? negative cs).map value =
        (if cs ≠ [] ∧ AllDigits cs then some (sign negative * numeral cs) else none) ∧
      ofHex? b.negative b.hex = some b := by
  refine ⟨b.places_getLast, ?_, value_injective.eq_iff, ?_, value_ofInt v, ?_, ?_, ofHex?_hex b⟩
  · rintro ⟨hneg, hzero⟩
    have hb : ofInt 0 = b := hzero ▸ ofInt_value b
    rw [← hb] at hneg
    cases hneg
  · rw [value_ofPlaces, valueOf_eq_sum]
  · rw [toInt?_eq (by decide) (by decide)]
    exact if_congr (by omega) rfl rfl
  · rw [ofHex?_eq]
    split
    · rw [Option.map_some, value_ofInt]
    · rfl

/-- Three places: the digits of the lower two are padded. The numeral is read in either case. -/
example : (ofPlaces true [0xAB, 0, 0x1F]).hex = "1f000000ab".toList ∧
    ofHex? true "0001F000000Ab".toList = some (ofPlaces true [0xAB, 0, 0x1F]) := by
  decide +kernel

end Bignum

end Foam
