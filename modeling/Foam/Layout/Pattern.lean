import Foam.Layout
import Foam.Misuse

/-!
# Written layouts

Any text can stand for a layout, one byte a slot, with a final `*` that repeats the slot before it.
Only well formed ones describe every slot they admit. The written form of a layout is well formed.
-/

namespace Foam

/-- A layout as written, which may be malformed. -/
structure Pattern where
  text : String
  deriving DecidableEq

namespace Pattern

def ofLayout (l : Layout) : Pattern := ⟨l.text⟩

/-- The bytes of the text as characters. -/
def codes (p : Pattern) : List Char := p.text.toUTF8.toList.map fun b => Char.ofNat b.toNat

def size (p : Pattern) : Nat := p.codes.length

def isEmpty (p : Pattern) : Bool := p.codes.isEmpty

def isVariadic (p : Pattern) : Bool := p.codes.getLast? == some '*'

/-- The slots before the repeated one, which is the least number of slots. -/
def minSlots (p : Pattern) : Nat := if p.isVariadic then p.size - 2 else p.size

def accepts (p : Pattern) (n : Nat) : Bool :=
  if p.isVariadic then p.minSlots ≤ n else n == p.minSlots

/-- The kind of slot `i`, if the text gives it one. -/
def kindAt? (p : Pattern) (i : Nat) : Option FieldKind :=
  let i := if p.isVariadic then min i p.minSlots else i
  p.codes[i]?.bind FieldKind.ofCode?

def kindAt (p : Pattern) (i : Nat) : Checked FieldKind :=
  match p.kindAt? i with
  | some k => .ok k
  | none => .error (.noKind p.text i)

/-- The kinds of the first `n` slots. -/
def kinds (p : Pattern) (n : Nat) : Checked (List FieldKind) :=
  (List.range n).mapM p.kindAt

/-- Every letter is a kind, and `*` stands only at the end, after a letter. -/
def isWellFormed (p : Pattern) : Bool :=
  let letters := if p.isVariadic then p.codes.dropLast else p.codes
  letters.all (fun c => (FieldKind.ofCode? c).isSome) && !(p.isVariadic && letters.isEmpty)

end Pattern

end Foam
