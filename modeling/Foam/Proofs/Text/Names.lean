import Foam.Proofs.Text.Numeral
import Mathlib.Data.List.Nodup

/-!
# Names of tables

The names that a table gives its rows are words, a letter with letters and digits after it, and no
two rows share one. So a name is one atom of the text form, it is no number, and it says which row is
meant. Both facts are read off the bytes of the names, which takes a table apart only once.
-/

namespace Foam

/-! ## Words -/

/-- Between the closing parenthesis and the first control character of the upper half there is nothing
that ends an atom. -/
theorem SExpr.not_endsAtom_of_range {c : Char} (h : 41 < c.toNat) (h' : c.toNat < 0x7F) :
    endsAtom c = false := by
  have hblank : Text.isBlank c = false := by
    simp only [Text.isBlank, Text.blankRanges, List.any_cons, List.any_nil, Bool.or_false,
      Bool.or_eq_false_iff, Bool.and_eq_false_iff, decide_eq_false_iff_not]
    omega
  have hopen : c ≠ '(' := by
    rintro rfl
    exact absurd h (by decide)
  have hclose : c ≠ ')' := by
    rintro rfl
    exact absurd h (by decide)
  simp [endsAtom, hblank, hopen, hclose]

namespace Text

/-- The code of a letter without marks. -/
def isLetterCode (n : Nat) : Bool := (65 ≤ n && n ≤ 90) || (97 ≤ n && n ≤ 122)

/-- The code of such a letter or of a digit. -/
def isWordCode (n : Nat) : Bool := isLetterCode n || (48 ≤ n && n ≤ 57)

/-- The codes are those of a letter and of letters or digits after it. -/
def areWord : List Nat → Bool
  | [] => false
  | n :: ns => isLetterCode n && ns.all isWordCode

/-- A letter, and letters or digits after it. -/
def IsWord (s : String) : Prop := areWord (s.toList.map Char.toNat) = true

def byteCodes (s : String) : List Nat := s.toByteArray.data.toList.map UInt8.toNat

theorem isWordCode_iff {n : Nat} :
    isWordCode n = true ↔ (65 ≤ n ∧ n ≤ 90 ∨ 97 ≤ n ∧ n ≤ 122) ∨ 48 ≤ n ∧ n ≤ 57 := by
  simp [isWordCode, isLetterCode]

theorem isWordCode_of_mem {ns : List Nat} (h : areWord ns = true) {n : Nat} (hn : n ∈ ns) :
    isWordCode n = true := by
  cases ns with
  | nil => cases hn
  | cons m ms =>
      obtain ⟨hm, hms⟩ := Bool.and_eq_true_iff.mp h
      rcases List.mem_cons.mp hn with rfl | hn
      · rw [isWordCode, hm, Bool.true_or]
      · exact List.all_eq_true.mp hms n hn

/-- A byte below 128 is all there is of its character. -/
theorem utf8EncodeChar_of_ascii {c : Char} (h : ∀ b ∈ String.utf8EncodeChar c, b.toNat < 128) :
    (String.utf8EncodeChar c).map UInt8.toNat = [c.toNat] := by
  rw [String.utf8EncodeChar.eq_1] at h ⊢
  have hlead : ∀ (n m k : Nat) (bs : List UInt8), 128 ≤ k → m + k ≤ 256 → 0 < m →
      ¬∀ b ∈ UInt8.ofNat (n % m + k) :: bs, b.toNat < 128 := by
    intro n m k bs hk hmk hm hall
    have hlt := hall _ List.mem_cons_self
    have hmod := Nat.mod_lt n hm
    rw [UInt8.toNat_ofNat_of_lt' (by simp only [UInt8.size]; omega)] at hlt
    omega
  split at h
  · next hc =>
      rw [if_pos hc, List.map_singleton, UInt8.toNat_ofNat_of_lt' (by simp only [UInt8.size]; omega)]
      rfl
  · split at h
    · exact absurd h (hlead _ _ _ _ (by decide) (by decide) (by decide))
    · split at h
      · exact absurd h (hlead _ _ _ _ (by decide) (by decide) (by decide))
      · exact absurd h (hlead _ _ _ _ (by decide) (by decide) (by decide))

theorem toList_utf8Encode (cs : List Char) :
    cs.utf8Encode.data.toList = cs.flatMap String.utf8EncodeChar := by
  induction cs with
  | nil => rfl
  | cons c cs ih =>
      rw [List.utf8Encode_cons, ByteArray.toList_data_append, List.utf8Encode_singleton,
        List.toList_data_toByteArray, ih, List.flatMap_cons]

/-- The bytes of a text of one-byte characters are their codes. -/
theorem byteCodes_eq {s : String} (h : ∀ n ∈ byteCodes s, n < 128) :
    byteCodes s = s.toList.map Char.toNat := by
  unfold byteCodes at h ⊢
  rw [← String.utf8Encode_toList, toList_utf8Encode] at h ⊢
  generalize s.toList = cs at h ⊢
  induction cs with
  | nil => rfl
  | cons c cs ih =>
      rw [List.flatMap_cons, List.map_append] at h ⊢
      have hc : ∀ b ∈ String.utf8EncodeChar c, b.toNat < 128 := fun b hb =>
        h _ (List.mem_append_left _ (List.mem_map_of_mem hb))
      rw [utf8EncodeChar_of_ascii hc, ih fun n hn => h n (List.mem_append_right _ hn)]
      rfl

theorem isWord_of_bytes {s : String} (h : areWord (byteCodes s) = true) : IsWord s := by
  have hascii : ∀ n ∈ byteCodes s, n < 128 := by
    intro n hn
    have hword := isWordCode_iff.mp (isWordCode_of_mem h hn)
    omega
  rw [IsWord, ← byteCodes_eq hascii]
  exact h

/-- Words begin with a letter, so they are no numbers. -/
theorem IsWord.readInt64? {s : String} (h : IsWord s) : SExpr.readInt64? s.toList = none := by
  unfold IsWord at h
  cases hs : s.toList with
  | nil =>
      rw [hs] at h
      cases h
  | cons c cs =>
      rw [hs, List.map_cons] at h
      have hc : isLetterCode c.toNat = true := (Bool.and_eq_true_iff.mp h).1
      have hdigit : Decimal.isDigit c = false := by
        rw [← Bool.not_eq_true]
        intro hd
        rw [Decimal.isDigit_eq, Char.isDigit_iff_toNat] at hd
        simp only [isLetterCode, Bool.or_eq_true, Bool.and_eq_true, decide_eq_true_eq] at hc
        have h0 : '0'.toNat = 48 := rfl
        have h9 : '9'.toNat = 57 := rfl
        omega
      have hsign : Decimal.splitSign (c :: cs) = (false, c :: cs) := by
        unfold Decimal.splitSign
        split
        · next heq =>
            cases heq
            cases hc
        · next heq =>
            cases heq
            cases hc
        · rfl
      rw [SExpr.readInt64?, Decimal.readInt?, hsign]
      simp [hdigit]

theorem IsWord.not_endsAtom {s : String} (h : IsWord s) {c : Char} (hc : c ∈ s.toList) :
    SExpr.endsAtom c = false := by
  have hcode := isWordCode_iff.mp (isWordCode_of_mem h (List.mem_map_of_mem hc))
  exact SExpr.not_endsAtom_of_range (by omega) (by omega)

theorem IsWord.toList_ne_nil {s : String} (h : IsWord s) : s.toList ≠ [] := by
  intro hs
  rw [IsWord, hs] at h
  cases h

/-- A number that tells texts apart. -/
def digest (s : String) : Nat := (byteCodes s).foldl (fun n code => 256 * n + code) 0

end Text

/-! ## Tables -/

namespace Table

variable {α : Type} [Table α]

/-- Every row is called by a word of its own. -/
structure Spelled (α : Type) [Table α] : Prop where
  word : ∀ a : α, Text.IsWord (name a)
  distinct : ∀ a b : α, name a = name b → a = b

def allDistinct : List Nat → Bool
  | [] => true
  | n :: ns => !ns.any (Nat.beq n) && allDistinct ns

theorem nodup_of_allDistinct {ns : List Nat} (h : allDistinct ns = true) : ns.Nodup := by
  induction ns with
  | nil => exact List.nodup_nil
  | cons n ns ih =>
      obtain ⟨hn, hns⟩ := Bool.and_eq_true_iff.mp h
      refine List.nodup_cons.mpr ⟨fun hmem => ?_, ih hns⟩
      have hany : ns.any (Nat.beq n) = true := List.any_eq_true.mpr ⟨n, hmem, Nat.beq_refl n⟩
      rw [hany] at hn
      cases hn

theorem mem_rows (a : α) : a ∈ (rows : List α) := List.mem_of_getElem? (rows_ordinal a)

theorem Spelled.of_rows
    (hword : ((rows : List α).all fun a => Text.areWord (Text.byteCodes (name a))) = true)
    (hdistinct : allDistinct ((rows : List α).map fun a => Text.digest (name a)) = true) :
    Spelled α where
  word a := Text.isWord_of_bytes (List.all_eq_true.mp hword a (mem_rows a))
  distinct a b h := List.inj_on_of_nodup_map (nodup_of_allDistinct hdistinct) (mem_rows a)
    (mem_rows b) (congrArg Text.digest h)

/-- The name of a row leads back to it. -/
theorem Spelled.ofName?_name (h : Spelled α) (a : α) : ofName? (name a) = some a := by
  cases hfound : (ofName? (name a) : Option α) with
  | none =>
      have := List.find?_eq_none.mp hfound a (mem_rows a)
      simp at this
  | some b =>
      have hname : name b = name a := by simpa using List.find?_some hfound
      rw [h.distinct b a hname]

end Table

theorem Tag.spelled : Table.Spelled Tag := .of_rows (by decide +kernel) (by decide +kernel)

theorem Builtin.spelled : Table.Spelled Builtin :=
  .of_rows (by decide +kernel) (by decide +kernel)

theorem Protocol.spelled : Table.Spelled Protocol := .of_rows (by decide +kernel) (by decide +kernel)

theorem Usage.spelled : Table.Spelled Usage := .of_rows (by decide +kernel) (by decide +kernel)

end Foam
