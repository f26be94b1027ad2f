import Foam.Text.Hex

/-!
# Bignum literals

An integer of any size as a sign and a magnitude in base 65536, least place first. The form is
canonical: no zero place at the top and no negative zero, so equal integers are equal literals.
Literals are only written, read and compared here.
-/

namespace Foam

structure Bignum where
  negative : Bool
  /-- Places of the magnitude, the least first. -/
  places : List UInt16
  places_getLast : places.getLast? ≠ some 0
  negative_ne_zero : negative = true → places ≠ []
  deriving DecidableEq

namespace Bignum

/-- Drops the zeros at the end of `ps`. -/
def dropHigh : List UInt16 → List UInt16
  | [] => []
  | p :: ps =>
    match dropHigh ps with
    | [] => if p = 0 then [] else [p]
    | q :: qs => p :: q :: qs

theorem dropHigh_getLast (ps : List UInt16) : (dropHigh ps).getLast? ≠ some 0 := by
  induction ps with
  | nil => simp [dropHigh]
  | cons p ps ih =>
    unfold dropHigh
    split
    · split <;> simp_all
    · next q qs h => simpa [h, List.getLast?_cons_cons] using ih

/-- The literal with the given sign and places, which need not be canonical. -/
def ofPlaces (negative : Bool) (places : List UInt16) : Bignum where
  negative := negative && !(dropHigh places).isEmpty
  places := dropHigh places
  places_getLast := dropHigh_getLast places
  negative_ne_zero := by simp

theorem dropHigh_eq_self {ps : List UInt16} (h : ps.getLast? ≠ some 0) : dropHigh ps = ps := by
  induction ps with
  | nil => rfl
  | cons p ps ih =>
    cases ps with
    | nil =>
      have hp : p ≠ 0 := by simpa using h
      simp [dropHigh, hp]
    | cons q qs => rw [dropHigh, ih (by simpa [List.getLast?_cons_cons] using h)]

/-- A literal is determined by its sign and places. -/
theorem ofPlaces_places (b : Bignum) : ofPlaces b.negative b.places = b := by
  obtain ⟨negative, places, hl, hn⟩ := b
  have hp : dropHigh places = places := dropHigh_eq_self hl
  have hs : (negative && !places.isEmpty) = negative := by
    cases negative with
    | false => rfl
    | true => simpa using hn rfl
  simp only [ofPlaces, hp, hs]

instance : Inhabited Bignum := ⟨ofPlaces false []⟩

def zero : Bignum := ofPlaces false []

def isZero (b : Bignum) : Bool := b.places.isEmpty

/-- The places of `n`, least first. -/
def placesOf (n : Nat) : List UInt16 :=
  if n = 0 then [] else UInt16.ofNat (n % 65536) :: placesOf (n / 65536)
termination_by n
decreasing_by omega

def ofInt (v : Int) : Bignum := ofPlaces (v < 0) (placesOf v.natAbs)

/-- The magnitude put together from the top place down, each place shifted in below. -/
def assemble (ps : List UInt16) : Nat := ps.foldr (fun p n => n <<< 16 ||| p.toNat) 0

/-- The value if `bits` bits with a sign hold it. Places that exceed the bits are not put together. -/
def toInt? (bits : Nat) (b : Bignum) : Option Int :=
  if bits < 16 * b.places.length then none
  else
    let n := assemble b.places
    if b.negative then if n ≤ Nat.pow 2 (bits - 1) then some (-(n : Int)) else none
    else if n < Nat.pow 2 (bits - 1) then some n else none

/-! ## Written form -/

/-- Hexadecimal digits of the magnitude. The top place has no leading zeros, and each place below it
has four digits. -/
def hex (b : Bignum) : List Char :=
  match b.places.reverse with
  | [] => ['0']
  | p :: ps => Text.Hex.digits p.toNat ++ ps.flatMap fun q => Text.Hex.padded 4 q.toNat

/-- Digits in fours from the right. The leftmost, which come last, may be fewer. -/
def groups (digits : List Char) : List (List Char) :=
  if digits.length = 0 then []
  else
    let start := digits.length - 4
    digits.drop start :: groups (digits.take start)
termination_by digits.length
decreasing_by rw [List.length_take]; omega

/-- The place that up to four digits make. -/
def place? (digits : List Char) : Option UInt16 := (Text.Hex.read? digits).map UInt16.ofNat

/-- The literal with the given sign and hexadecimal magnitude. -/
def ofHex? (negative : Bool) (digits : List Char) : Option Bignum :=
  if digits.isEmpty || !digits.all Text.Hex.isDigit then none
  else ((groups digits).mapM place?).map (ofPlaces negative)

/-- `#x` and the digits, after a minus sign if negative. -/
def text (b : Bignum) : String :=
  String.ofList ((if b.negative then ['-'] else []) ++ '#' :: 'x' :: b.hex)

/-- Reads the written form. -/
def read? : List Char → Option Bignum
  | '-' :: '#' :: 'x' :: digits => ofHex? true digits
  | '#' :: 'x' :: digits => ofHex? false digits
  | _ => none

end Bignum

end Foam
