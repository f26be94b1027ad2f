/-!
# Lossy reading of UTF-8

Bytes as text when they need not be valid UTF-8. Each maximal run of bytes that begins a character
but cannot be completed, and each byte that begins none, becomes one replacement character.
-/

namespace Foam.Text.Lossy

/-- What a byte that begins a character asks of those after it: how many follow, and the least and
the greatest value of the first of them. Any further one is from `0x80` to `0xBF`. -/
structure Lead where
  following : Nat
  low : Nat
  high : Nat

/-- The lead of a first byte, if it can begin a character of two bytes or more. -/
def lead? (b : Nat) : Option Lead :=
  if 0xC2 ≤ b ∧ b ≤ 0xDF then some ⟨1, 0x80, 0xBF⟩
  else if b = 0xE0 then some ⟨2, 0xA0, 0xBF⟩
  else if b = 0xED then some ⟨2, 0x80, 0x9F⟩
  else if 0xE1 ≤ b ∧ b ≤ 0xEF then some ⟨2, 0x80, 0xBF⟩
  else if b = 0xF0 then some ⟨3, 0x90, 0xBF⟩
  else if 0xF1 ≤ b ∧ b ≤ 0xF3 then some ⟨3, 0x80, 0xBF⟩
  else if b = 0xF4 then some ⟨3, 0x80, 0x8F⟩
  else none

/-- Where the reading stands: between characters, or inside one whose bytes so far make `code` and
which still wants `following` bytes, the next of them from `low` to `high`. -/
inductive State
  | between
  | inside (code following low high : Nat)

/-- The replacement character. -/
def replacement : Char := Char.ofNat 0xFFFD

/-- The state after a byte that stands between characters, and the character it completes. -/
def begin (b : Nat) : State × List Char :=
  if b ≤ 0x7F then (.between, [Char.ofNat b])
  else
    match lead? b with
    | some l => (.inside (b % Nat.pow 2 (6 - l.following)) l.following l.low l.high, [])
    | none => (.between, [replacement])

/-- The characters of `bytes`, read on from a state. A byte that the open character cannot take
closes it as one replacement and then begins anew. -/
def chars : State → List UInt8 → List Char
  | .between, [] => []
  | .inside .., [] => [replacement]
  | .between, b :: rest =>
    let (next, out) := begin b.toNat
    out ++ chars next rest
  | .inside code following low high, b :: rest =>
    let n := b.toNat
    if low ≤ n ∧ n ≤ high then
      let code := 64 * code + n % 64
      if following ≤ 1 then Char.ofNat code :: chars .between rest
      else chars (.inside code (following - 1) 0x80 0xBF) rest
    else
      let (next, out) := begin n
      replacement :: out ++ chars next rest

def decode (bytes : List UInt8) : String :=
  String.ofList (chars .between bytes)

end Foam.Text.Lossy
