import Foam.Bignum

/-!
# Digests

A tree hash needs one number for a payload of any length. Strings and bignums are therefore handed,
part by part, to a hash function that runs over its input. Which function that is, is left open here:
it comes from elsewhere, and nothing is asked of it.
-/

namespace Foam

/-- A hash function that takes in its input part by part. -/
structure Hasher where
  State : Type
  start : State
  /-- Takes in bytes. -/
  bytes : State → List UInt8 → State
  /-- Takes in a single byte. -/
  byte : State → UInt8 → State
  /-- Takes in the length of a sequence whose items follow. -/
  length : State → Nat → State
  finish : State → UInt64

namespace Hasher

/-- The bytes of a string, closed by one that no string has. -/
def ofString (h : Hasher) (s : String) : UInt64 :=
  h.finish (h.byte (h.bytes h.start s.toUTF8.toList) 0xff)

/-- The sign, the number of places, and the places with the low byte first. -/
def ofBignum (h : Hasher) (b : Bignum) : UInt64 :=
  let places := b.places.flatMap fun (p : UInt16) => [p.toUInt8, (p >>> 8).toUInt8]
  h.finish (h.bytes (h.length (h.byte h.start b.negative.toUInt8) b.places.length) places)

end Hasher

/-- Both halves of a word in one. -/
def Digest.fold (v : UInt64) : UInt32 := (v ^^^ v >>> 32).toUInt32

end Foam
