import Foam.Decimal.Shortest

/-!
# Floating numbers as text

Writing: the shortest decimal, positional from `1e-4` up to but not including `1e16` and scientific
elsewhere, a whole number with one zero after the point. Reading: decimal digits with an optional
point and exponent, rounded to the nearest number of the format, or the words `inf`, `infinity` and
`nan` in any case.
-/

namespace Foam.Decimal

/-! ## Writing -/

/-- The powers of ten of a leading digit that is written positionally: from `first` up to but not
including `limit`. -/
structure Placement where
  first : Int
  limit : Int

def positional : Placement := ⟨-4, 16⟩

/-- Decimal digits of `n`. -/
def digitChars (n : Nat) : List Char := Nat.toDigits 10 n

/-- The digits `ds` with the point after `point` of them, zeros filling either side up. -/
def placed (ds : List Char) (point : Int) : List Char :=
  if point ≤ 0 then '0' :: '.' :: List.replicate (-point).toNat '0' ++ ds
  else
    let whole := ds.take point.toNat
    let fraction := ds.drop point.toNat
    whole ++ List.replicate (point.toNat - ds.length) '0' ++ '.' ::
      (if fraction.isEmpty then ['0'] else fraction)

/-- The digits `ds` with a point after the first if there are more, and the power of ten of the
first. -/
def scientific (ds : List Char) (power : Int) : List Char :=
  ds.take 1 ++ (if ds.length ≤ 1 then [] else '.' :: ds.drop 1) ++ 'e' :: (toString power).toList

def Dec.chars (n : Placement) (d : Dec) : List Char :=
  let ds := digitChars d.digits
  let power := d.exponent + (ds.length - 1 : Nat)
  if n.first ≤ power ∧ power < n.limit then placed ds (power + 1) else scientific ds power

def signed (negative : Bool) (cs : List Char) : List Char := if negative then '-' :: cs else cs

/-- The number with these bits. A not-a-number has no sign. -/
def BinaryFormat.text (f : BinaryFormat) (bits : Nat) : String :=
  match f.decode bits with
  | .nan => "NaN"
  | .infinite negative => String.ofList (signed negative ['i', 'n', 'f'])
  | .finite negative m q =>
    String.ofList (signed negative
      (if m = 0 then ['0', '.', '0'] else (f.shortest m q).chars positional))

/-! ## Reading -/

def isDigit (c : Char) : Bool := '0' ≤ c && c ≤ '9'

/-- The number whose digits, read on from `n`, are `ds`. -/
def digitsFrom (n : Nat) (ds : List Char) : Nat :=
  ds.foldl (fun n c => 10 * n + (c.toNat - 48)) n

/-- Splits off one sign. -/
def splitSign : List Char → Bool × List Char
  | '-' :: cs => (true, cs)
  | '+' :: cs => (false, cs)
  | cs => (false, cs)

/-- A whole number: an optional sign and one digit or more. -/
def readInt? (cs : List Char) : Option Int :=
  let (negative, ds) := splitSign cs
  if ds.isEmpty || !ds.all isDigit then none
  else some (if negative then -(digitsFrom 0 ds : Int) else digitsFrom 0 ds)

/-- A whole number without a minus sign. -/
def readNat? (cs : List Char) : Option Nat :=
  let ds := match cs with
    | '+' :: ds => ds
    | ds => ds
  if ds.isEmpty || !ds.all isDigit then none else some (digitsFrom 0 ds)

/-- The exponent that the end of a decimal gives: none is zero. -/
def readExponent? : List Char → Option Int
  | [] => some 0
  | c :: cs => if c = 'e' ∨ c = 'E' then readInt? cs else none

/-- An unsigned decimal with a digit before or after the point. -/
def readDec? (cs : List Char) : Option Dec :=
  let whole := cs.takeWhile isDigit
  let rest := cs.dropWhile isDigit
  let (fraction, rest) := match rest with
    | '.' :: more => (more.takeWhile isDigit, more.dropWhile isDigit)
    | _ => ([], rest)
  if whole.isEmpty && fraction.isEmpty then none
  else (readExponent? rest).map fun e =>
    ⟨digitsFrom (digitsFrom 0 whole) fraction, e - fraction.length⟩

/-- Past `10 ^ reach` every number is infinite in either format, and below `10 ^ -reach` zero. -/
def reach : Int := 400

/-- Bits of the number of the format nearest to a decimal. -/
def BinaryFormat.ofDec (f : BinaryFormat) (d : Dec) : Nat :=
  let power := d.exponent + decimalLength d.digits
  if d.digits = 0 ∨ power < -reach then 0
  else if reach < power then f.infinityBits
  else f.nearest (d.digits * Nat.pow 10 d.exponent.toNat) (Nat.pow 10 (-d.exponent).toNat)

/-- Bits of the number that `cs` spells, a sign first if it has one. -/
def BinaryFormat.read? (f : BinaryFormat) (cs : List Char) : Option Nat :=
  let (negative, body) := splitSign cs
  let magnitude :=
    match body.map Char.toLower with
    | ['i', 'n', 'f'] | ['i', 'n', 'f', 'i', 'n', 'i', 't', 'y'] => some f.infinityBits
    | ['n', 'a', 'n'] => some f.nanBits
    | _ => (readDec? body).map f.ofDec
  magnitude.map fun bits => if negative then f.signBit + bits else bits

end Foam.Decimal
