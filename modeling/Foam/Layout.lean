/-!
# Slot layouts

What the slots of an instruction hold, in order: a list of fixed slots, and for some instructions a
tail, one kind that every further slot has. A layout is written as one letter a slot, with `*` after
the letter of the tail.
-/

namespace Foam

/-- What one slot means. -/
inductive FieldKind
  /-- Ordinal of a tag used as a type. -/
  | typeTag
  /-- Ordinal of a builtin. -/
  | builtin
  /-- Ordinal of a calling protocol. -/
  | protocol
  /-- Ordinal of a declaration usage. -/
  | declUsage
  | byte
  | halfWord
  | word
  /-- Small index, stored in the integer format of its node. -/
  | index
  /-- Label, stored in the label format of the enclosing procedure. -/
  | label
  /-- Byte length of an encoded procedure. -/
  | treeLength
  /-- Label count of a procedure, which fixes its label format. -/
  | labelFormat
  | str
  | sflo
  | dflo
  | bint
  /-- Owned child node. -/
  | child
  /-- Value of the host, which has no encoding. -/
  | arb
  deriving DecidableEq, Repr

namespace FieldKind

def all : List FieldKind :=
  [.typeTag, .builtin, .protocol, .declUsage, .byte, .halfWord, .word, .index, .label, .treeLength,
   .labelFormat, .str, .sflo, .dflo, .bint, .child, .arb]

/-- The letter that stands for the kind in a written layout. -/
def code : FieldKind → Char
  | .typeTag => 't'
  | .builtin => 'o'
  | .protocol => 'p'
  | .declUsage => 'D'
  | .byte => 'b'
  | .halfWord => 'h'
  | .word => 'w'
  | .index => 'i'
  | .label => 'L'
  | .treeLength => 'X'
  | .labelFormat => 'F'
  | .str => 's'
  | .sflo => 'f'
  | .dflo => 'd'
  | .bint => 'n'
  | .child => 'C'
  | .arb => '!'

def name : FieldKind → String
  | .typeTag => "TypeTag"
  | .builtin => "Builtin"
  | .protocol => "Protocol"
  | .declUsage => "DeclUsage"
  | .byte => "Byte"
  | .halfWord => "HalfWord"
  | .word => "Word"
  | .index => "Index"
  | .label => "Label"
  | .treeLength => "TreeLength"
  | .labelFormat => "LabelFormat"
  | .str => "Str"
  | .sflo => "SFlo"
  | .dflo => "DFlo"
  | .bint => "BInt"
  | .child => "Child"
  | .arb => "Arb"

def ofCode? (c : Char) : Option FieldKind := all.find? fun k => k.code == c

theorem ofCode?_code (k : FieldKind) : ofCode? k.code = some k := by cases k <;> rfl

/-- Kinds whose payload is a plain integer. -/
def isIntegral : FieldKind → Bool
  | .typeTag | .builtin | .protocol | .declUsage | .byte | .halfWord | .word | .index | .label
  | .treeLength | .labelFormat => true
  | _ => false

/-- Kinds that a deep copy duplicates and a free releases. -/
def isOwned : FieldKind → Bool
  | .child | .str | .bint => true
  | _ => false

end FieldKind

/-- The slots of an instruction. -/
structure Layout where
  fixed : List FieldKind
  /-- The kind of every slot after the fixed ones; without it there are none. -/
  tail : Option FieldKind
  deriving DecidableEq, Repr

namespace Layout

def isVariadic (l : Layout) : Bool := l.tail.isSome

/-- The least number of slots. -/
def minSlots (l : Layout) : Nat := l.fixed.length

/-- A node with `n` slots has this layout. -/
def accepts (l : Layout) (n : Nat) : Bool :=
  if l.isVariadic then l.minSlots ≤ n else n == l.minSlots

/-- The kind of slot `i`. -/
def kindAt? (l : Layout) (i : Nat) : Option FieldKind :=
  l.fixed[i]?.or l.tail

/-- The kinds of the first `n` slots, fewer if the layout ends before. -/
def kinds (l : Layout) (n : Nat) : List FieldKind :=
  (List.range n).filterMap l.kindAt?

/-- Every slot of a node with this layout has a kind. -/
theorem kindAt?_isSome_of_accepts {l : Layout} {n i : Nat} (h : l.accepts n = true) (hi : i < n) :
    (l.kindAt? i).isSome = true := by
  unfold accepts isVariadic minSlots at h
  cases ht : l.tail with
  | some k => simp [kindAt?, ht]
  | none =>
    have hn : n = l.fixed.length := by simpa [ht] using h
    simp [kindAt?, ht, ← hn, hi]

theorem length_kinds {l : Layout} {n : Nat} (h : l.accepts n = true) : (l.kinds n).length = n := by
  unfold kinds
  have key : ∀ i ∈ List.range n, (l.kindAt? i).isSome = true := fun i hi =>
    kindAt?_isSome_of_accepts h (List.mem_range.1 hi)
  rw [List.length_filterMap_eq_countP, List.countP_eq_length.2 key, List.length_range]

/-- One letter a slot, the tail with a `*`. -/
def text (l : Layout) : String :=
  String.ofList (l.fixed.map FieldKind.code ++
    match l.tail with
    | some k => [k.code, '*']
    | none => [])

end Layout

end Foam
