/-!
# Tables

An enumeration whose members are rows of a fixed table: each has a position, its ordinal, and a
name. Ordinals are what slots and bytes hold, names are what the text form shows.
-/

namespace Foam

/-- An enumeration laid out as a table. The laws make `ordinal` the position in `rows`. -/
class Table (α : Type) where
  /-- The members in table order. -/
  rows : List α
  name : α → String
  ordinal : α → Nat
  rows_ordinal : ∀ a, rows[ordinal a]? = some a
  ordinal_of_rows : ∀ i a, rows[i]? = some a → ordinal a = i

namespace Table

variable {α : Type} [Table α]

/-- The member at position `n`, if the table reaches that far. -/
def ofOrdinal? (n : Int) : Option α :=
  if n < 0 then none else (rows : List α)[n.toNat]?

/-- The member called `s`. -/
def ofName? (s : String) : Option α :=
  (rows : List α).find? fun a => name a == s

/-- The number of members. -/
def size (α : Type) [Table α] : Nat := (rows : List α).length

@[simp] theorem ofOrdinal?_ordinal (a : α) : ofOrdinal? (ordinal a : Int) = some a := by
  simp [ofOrdinal?, rows_ordinal]

theorem ofOrdinal?_eq_some_iff {n : Int} {a : α} : ofOrdinal? n = some a ↔ n = ordinal a := by
  constructor
  · intro h
    unfold ofOrdinal? at h
    split at h
    · simp at h
    · have := ordinal_of_rows _ _ h
      omega
  · rintro rfl
    exact ofOrdinal?_ordinal a

theorem ofOrdinal?_eq_none_iff {n : Int} :
    (ofOrdinal? n : Option α) = none ↔ n < 0 ∨ (size α : Int) ≤ n := by
  unfold ofOrdinal? size
  split
  · simp_all
  · simp only [List.getElem?_eq_none_iff]
    omega

end Table

end Foam
