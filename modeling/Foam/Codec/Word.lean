/-!
# Words as bytes

Numbers of a fixed width as bytes, the most significant first. A signed number is kept as its
residue.
-/

namespace Foam.Codec.Word

/-- The lowest `width` bytes of `n`. -/
def toBytes : (width : Nat) → Nat → List UInt8
  | 0, _ => []
  | width + 1, n => toBytes width (n / 256) ++ [UInt8.ofNat n]

def ofBytes (bytes : List UInt8) : Nat := bytes.foldl (fun n b => 256 * n + b.toNat) 0

theorem length_toBytes (width n : Nat) : (toBytes width n).length = width := by
  induction width generalizing n with
  | zero => rfl
  | succ width ih => simp [toBytes, ih]

theorem ofBytes_append_singleton (bytes : List UInt8) (b : UInt8) :
    ofBytes (bytes ++ [b]) = 256 * ofBytes bytes + b.toNat := by
  simp [ofBytes]

/-- The number is in the signed range of the width. -/
def fitsSigned (width : Nat) (v : Int) : Bool :=
  -Int.pow 2 (8 * width - 1) ≤ v && v < Int.pow 2 (8 * width - 1)

/-- The number is in the unsigned range of the width. -/
def fitsUnsigned (width : Nat) (v : Int) : Bool := 0 ≤ v && v < Int.pow 2 (8 * width)

/-- The bytes of a signed or unsigned number. -/
def ofInt (width : Nat) (v : Int) : List UInt8 :=
  toBytes width (v % Int.pow 2 (8 * width)).toNat

/-- The signed number of a width with residue `n`. -/
def signed (width n : Nat) : Int :=
  if n < Nat.pow 2 (8 * width - 1) then n else n - Int.pow 2 (8 * width)

end Foam.Codec.Word
